import YangScript.Proofs.Agreement
import YangScript.Proofs.CutShort

/-!
# What a run does to the disk

A run does nothing to the disk, or makes the output directory and then writes the files of some of
the newest modules, in the order of their names, each with the text that its module comes to. This
holds whether or not the run ends at its first failure.
-/

set_option autoImplicit false

namespace YangScript

/-- The files that a job writes, each with its text, in order. -/
def Job.filesWritten {α : Type} (base : Location) (job : Job α) (t : FileTree) :
    List (String × String) :=
  (job.effects base t).filterMap Effect.written?

/-- The effects that write the files of some modules, each with its text. -/
def filesOf (out : String) (ws : List (Module × String)) : List Effect :=
  ws.map fun w => .file (outputFile out w.1.name) w.2

theorem written_filesOf (out : String) (ws : List (Module × String)) :
    (filesOf out ws).filterMap Effect.written? =
      ws.map fun w => (outputFile out w.1.name, w.2) := by
  rw [filesOf, List.filterMap_map]
  exact congrFun List.filterMap_eq_map ws

/-- Some effects write the files of some of the modules, in their order. -/
def WritesSome (options : SourceOptions) (out : String) (ms : List Module) (es : List Effect) :
    Prop :=
  ∃ ws : List (Module × String), es = filesOf out ws ∧ (ws.map Prod.fst).Sublist ms ∧
    ∀ w ∈ ws, (w.1.prepare options).value = .ready (w.1.name ++ ".ts") w.2

namespace WritesSome

variable {options : SourceOptions} {out : String} {m : Module} {ms : List Module}
  {es es' : List Effect}

theorem none (options : SourceOptions) (out : String) (ms : List Module) :
    WritesSome options out ms [] :=
  ⟨[], rfl, List.nil_sublist ms, by simp⟩

theorem skip (m : Module) (h : WritesSome options out ms es) :
    WritesSome options out (m :: ms) es := by
  obtain ⟨ws, rfl, hsub, hready⟩ := h
  exact ⟨ws, rfl, hsub.cons m, hready⟩

theorem write {text : String} (hm : (m.prepare options).value = .ready (m.name ++ ".ts") text)
    (h : WritesSome options out ms es) :
    WritesSome options out (m :: ms) (.file (outputFile out m.name) text :: es) := by
  obtain ⟨ws, rfl, hsub, hready⟩ := h
  refine ⟨(m, text) :: ws, rfl, hsub.cons_cons m, ?_⟩
  intro w hw
  rcases List.mem_cons.mp hw with rfl | hw
  · exact hm
  · exact hready w hw

theorem of_prefix (h : WritesSome options out ms es) (hp : es' <+: es) :
    WritesSome options out ms es' := by
  obtain ⟨ws, rfl, hsub, hready⟩ := h
  obtain ⟨front, hfront, rfl⟩ := List.prefix_map_iff.mp hp
  exact ⟨front, rfl, (hfront.sublist.map _).trans hsub, fun w hw => hready w (hfront.subset hw)⟩

end WritesSome

section

variable (base : Location) (options : Options) (out : String)

theorem effects_failWith (bail : Bool) {σ : Type} (f : Failure) (next : Stage σ) (t : FileTree) :
    (failWith bail f next).effects base t = if bail then [] else next.effects base t := by
  cases bail <;> rfl

/-- Loading does nothing to the disk. -/
theorem effects_loadAll (bail : Bool) (files : List String) (s : Loaded) (t : FileTree) :
    (loadAll bail files s).effects base t = [] := by
  induction files generalizing s with
  | nil => rfl
  | cons file files ih =>
    rw [loadAll, Job.effects, Job.effects]
    cases Module.ofReading (t.read base file) with
    | error e => simp [effects_failWith, ih]
    | ok m =>
      cases h : s.registry.accepts m with
      | true => simp [h, ih]
      | false => simp [h, Job.effects, ih]

/-- What writing a module does to the disk, whatever is done after it. -/
theorem writesSome_moduleJob (m : Module) (ms : List Module) (s : Summary)
    {next : Summary → Stage Summary}
    (hnext : ∀ s t, WritesSome options.source out ms ((next s).effects base t)) (t : FileTree) :
    WritesSome options.source out (m :: ms) ((moduleJob options out m s next).effects base t) := by
  have hfailed : ∀ f s t, WritesSome options.source out (m :: ms)
      ((failWith options.bail f (next s)).effects base t) := by
    intro f s t
    rw [effects_failWith]
    split
    · exact .none _ _ _
    · exact (hnext s t).skip m
  rw [moduleJob, Job.effects_sayAll]
  cases hp : (m.prepare options.source).value with
  | failure f => exact hfailed f _ t
  | noFields => exact (hnext _ t).skip m
  | ready file text =>
    obtain rfl : file = m.name ++ ".ts" := fileName?_eq (Module.prepare_ready hp).1
    cases hw : (t.write base (Path.join out (m.name ++ ".ts")) text).result with
    | error e =>
      dsimp only
      rw [Job.effects_write_error hw]
      exact hfailed _ _ t
    | ok u =>
      dsimp only
      rw [Job.effects_write_ok hw]
      exact .write hp (hnext _ _)

theorem writesSome_writeAll (ms : List Module) (s : Summary) (t : FileTree) :
    WritesSome options.source out ms ((writeAll options out ms s).effects base t) := by
  induction ms generalizing s t with
  | nil => exact .none _ _ _
  | cons m ms ih =>
    rw [writeAll]
    cases m.isSubmodule with
    | true => exact (ih s t).skip m
    | false => exact writesSome_moduleJob base options out m ms s ih t

end

theorem effects_andThen {σ τ : Type} {base : Location} {stage : Stage σ} {next : σ → Stage τ}
    {t t' : FileTree} {a : σ} {log : List RunNotice}
    (h : stage.perform base t = ⟨.ok a, t', log⟩) :
    (andThen stage next).effects base t =
      stage.effects base t ++ (next a).effects base t' := by
  rw [andThen, Job.effects_bind, h]

theorem effects_andThen_of_nil {σ τ : Type} {base : Location} {next : σ → Stage τ}
    (hnext : ∀ a t, (next a).effects base t = []) (stage : Stage σ) (t : FileTree) :
    (andThen stage next).effects base t = stage.effects base t := by
  rw [andThen, Job.effects_bind]
  cases (stage.perform base t).value with
  | error f => exact List.append_nil _
  | ok a => rw [hnext, List.append_nil]

/-- What a run over some documents may do to the disk. -/
def RunDoes (options : SourceOptions) (out : String) (docs : List (String × Module))
    (es : List Effect) : Prop :=
  es = [] ∨ ∃ (r : Registry) (files : List Effect), r.Holds docs ∧
    WritesSome options out r.modules files ∧ es = .directory out :: files

theorem RunDoes.of_prefix {options : SourceOptions} {out : String} {docs : List (String × Module)}
    {es es' : List Effect} (h : RunDoes options out docs es) (hp : es' <+: es) :
    RunDoes options out docs es' := by
  rcases h with rfl | ⟨r, files, hholds, hfiles, rfl⟩
  · exact Or.inl (List.prefix_nil.mp hp)
  · rcases List.prefix_cons_iff.mp hp with rfl | ⟨files', rfl, hp'⟩
    · exact Or.inl rfl
    · exact Or.inr ⟨r, files', hholds, hfiles.of_prefix hp', rfl⟩

section

variable {t : FileTree} {base : Location} {cwd : String} {options : Options}

/-- A run that is not ended by its failures makes the output directory and goes on to write. -/
theorem runFiles_does (hbail : options.bail = false) (out : String) (files : List String)
    (t : FileTree) :
    ∃ (r : Registry) (es : List Effect), r.Holds (documents t base files) ∧
      WritesSome options.source out r.modules es ∧
      (runFiles options out files).effects base t = .directory out :: es := by
  obtain ⟨errors, log, hload, -⟩ := loadAll_perform base files ⟨Registry.empty, 0⟩ t
  have hholds := Registry.holds_empty.insertAll (documents t base files)
  rw [runFiles, hbail, effects_andThen hload, effects_loadAll, List.nil_append, Job.effects]
  dsimp only
  generalize Registry.empty.insertAll ((documents t base files).map Prod.snd) = r at hholds
  refine ⟨r, _, hholds, ?_, rfl⟩
  cases (t.makeDirs base out).result with
  | error e => exact .none _ _ _
  | ok u =>
    dsimp only
    rw [effects_andThen_of_nil (fun s t => rfl)]
    exact writesSome_writeAll base options out r.modules _ _

/-- What a run does to the disk comes from the newest of the documents that it finds. -/
theorem runJob_does {files : List String}
    (hscan : t.scan base (Path.join cwd options.path) options.extension = .ok files) :
    RunDoes options.source (Path.join cwd options.out) (documents t base files)
      ((runJob cwd options).effects base t) := by
  have hplain : RunDoes options.source (Path.join cwd options.out) (documents t base files)
      ((runJob cwd { options with bail := false }).effects base t) := by
    rw [runJob, Job.effects, Job.effects, hscan]
    cases files with
    | nil => exact Or.inl rfl
    | cons file files =>
      have hgoes : ({ options with bail := false } : Options).bail = false := rfl
      exact Or.inr (runFiles_does hgoes _ (file :: files) t)
  rw [runJob_eq]
  split
  · exact hplain.of_prefix (Job.effects_cut_prefix base _ t)
  · exact hplain

/-- A run that finds nothing does nothing to the disk. -/
theorem effects_runJob_of_nothing
    (hscan : (∃ e, t.scan base (Path.join cwd options.path) options.extension = .error e) ∨
      t.scan base (Path.join cwd options.path) options.extension = .ok []) :
    (runJob cwd options).effects base t = [] := by
  rw [runJob, Job.effects, Job.effects]
  rcases hscan with ⟨e, hscan⟩ | hscan <;> rw [hscan] <;> rfl

end

section

variable {base : Location} {options : SourceOptions} {out : String} {t t' : FileTree}
  {ws : List (Module × String)}

/-- The files of some modules that are written in turn: nothing else is in their places, and each
is found with its text. -/
structure Written (base : Location) (out : String) (ws : List (Module × String))
    (t t' : FileTree) : Prop where
  kept : FileTree.Kept base out (ws.map fun w => w.1.name ++ ".ts") t t'
  found : ∀ w ∈ ws, ∃ place, FileTree.Target base out t (w.1.name ++ ".ts") place ∧
    t'.find? place = some (.file (.text w.2))
  others : ∀ loc, t'.find? loc = t.find? loc ∨
    ∃ w ∈ ws, FileTree.Target base out t (w.1.name ++ ".ts") loc ∧
      t'.find? loc = some (.file (.text w.2))

/-- One more file, written before the others and into a place of its own. -/
theorem Written.cons {w : Module × String} {place : Location}
    (hplace : FileTree.Target base out t (w.1.name ++ ".ts") place)
    (hother : w.1.name ++ ".ts" ∉ ws.map fun w => w.1.name ++ ".ts")
    (h : Written base out ws (t.put place (.file (.text w.2))) t') :
    Written base out (w :: ws) t t' := by
  have hplace' := (hplace.put_iff (.text w.2)).mpr hplace
  have hfound := h.kept.others _ place hplace' hother
  rw [FileTree.find?_put_self t place _ (FileTree.ne_nil_of_not_isDirectory hplace.vacant)]
    at hfound
  refine ⟨(hplace.kept _).trans h.kept, ?_, ?_⟩
  · intro w' hw'
    rcases List.mem_cons.mp hw' with rfl | hw'
    · exact ⟨place, hplace, hfound⟩
    · obtain ⟨place', htarget, hfound'⟩ := h.found w' hw'
      exact ⟨place', (hplace.put_iff _).mp htarget, hfound'⟩
  · intro loc
    by_cases hloc : loc = place
    · exact Or.inr ⟨w, List.mem_cons_self, hloc ▸ hplace, hloc ▸ hfound⟩
    · rcases h.others loc with hsame | ⟨w', hw', htarget, hfound'⟩
      · exact Or.inl (hsame.trans (FileTree.find?_put_ne t place loc _ hloc))
      · exact Or.inr ⟨w', List.mem_cons_of_mem w hw', (hplace.put_iff _).mp htarget, hfound'⟩

/-- Writing files of distinct names, none of which fails. -/
theorem written_applyAll (hout : out ≠ "")
    (hready : ∀ w ∈ ws, (w.1.prepare options).value = .ready (w.1.name ++ ".ts") w.2)
    (hnames : (ws.map fun w => w.1.name).Nodup)
    (hpossible : Effect.Possible base (filesOf out ws) t) :
    Written base out ws t (Effect.applyAll base (filesOf out ws) t) := by
  induction ws generalizing t with
  | nil => exact ⟨.refl base out _ t, by simp, fun loc => Or.inl rfl⟩
  | cons w ws ih =>
    obtain ⟨hw, hws⟩ := List.forall_mem_cons.mp hready
    rw [List.map_cons, List.nodup_cons] at hnames
    have hfile := Module.isFileName_of_ready hw
    obtain ⟨place, hplace⟩ := FileTree.exists_target hout hfile hpossible.1
    have htree : Effect.apply base t (.file (outputFile out w.1.name) w.2) =
        t.put place (.file (.text w.2)) := by
      rw [Effect.apply, outputFile, hplace.write_eq hout hfile]
    have hrest := hpossible.2
    rw [htree] at hrest
    have hother : w.1.name ++ ".ts" ∉ ws.map fun w => w.1.name ++ ".ts" := by
      intro hmem
      obtain ⟨w', hw', he⟩ := List.mem_map.mp hmem
      exact hnames.1 (append_ts_inj he ▸ List.mem_map_of_mem (f := fun w => w.1.name) hw')
    have hfinal : Effect.applyAll base (filesOf out (w :: ws)) t =
        Effect.applyAll base (filesOf out ws) (t.put place (.file (.text w.2))) := by
      rw [← htree]
      rfl
    rw [hfinal]
    exact (ih hws hnames.2 hrest).cons hplace hother

theorem Written.keepsDirectories (h : Written base out ws t t') :
    FileTree.KeepsDirectories t t' := by
  intro loc hloc
  rcases h.others loc with hsame | ⟨w, -, htarget, -⟩
  · rw [FileTree.isDirectory_iff] at hloc ⊢
    rw [hsame, hloc]
  · rw [htarget.vacant] at hloc
    exact absurd hloc (by decide)

theorem Written.read_eq (h : Written base out ws t t') (hout : out ≠ "")
    (hready : ∀ w ∈ ws, (w.1.prepare options).value = .ready (w.1.name ++ ".ts") w.2) :
    ∀ w ∈ ws, t'.read base (outputFile out w.1.name) = .ok w.2 := by
  intro w hw
  obtain ⟨place, hplace, hfound⟩ := h.found w hw
  have hfile := Module.isFileName_of_ready (hready w hw)
  rw [outputFile, ((h.kept.targets _ place).mpr hplace).read_eq hout hfile hfound]
  rfl

end

/-- A job that makes the output directory and then writes the files of some modules. -/
theorem written_of_effects {α : Type} {job : Job α} {t : FileTree} {base : Location} {out : String}
    (hout : out ≠ "") {options : SourceOptions} {r : Registry} {ws : List (Module × String)}
    (hsub : (ws.map Prod.fst).Sublist r.modules)
    (hready : ∀ w ∈ ws, (w.1.prepare options).value = .ready (w.1.name ++ ".ts") w.2)
    (heffects : job.effects base t = .directory out :: filesOf out ws) :
    Written base out ws (t.makeDirs base out).tree (job.perform base t).tree := by
  have hpossible := Job.possible_effects base job t
  rw [Job.perform_tree, heffects]
  rw [heffects] at hpossible
  have hnames : (ws.map fun w => w.1.name).Nodup := by
    have hnodup := (hsub.map Module.name).nodup r.sorted.nodup
    rwa [List.map_map] at hnodup
  exact written_applyAll hout hready hnames hpossible

/-- The tree of a run is that of its beginning, or the files of some of the newest modules are
written into it after the output directory is made. -/
theorem runJob_tree (t : FileTree) (base : Location) (cwd : String) (options : Options) :
    let out := Path.join cwd options.out
    let job := runJob cwd options
    (job.filesWritten base t = [] ∧ (job.perform base t).tree = t) ∨
      ∃ (files : List String) (r : Registry) (ws : List (Module × String)),
        t.scan base (Path.join cwd options.path) options.extension = .ok files ∧
        r.Holds (documents t base files) ∧ (ws.map Prod.fst).Sublist r.modules ∧
        (∀ w ∈ ws, (w.1.prepare options.source).value = .ready (w.1.name ++ ".ts") w.2) ∧
        job.filesWritten base t = ws.map (fun w => (outputFile out w.1.name, w.2)) ∧
        Written base out ws (t.makeDirs base out).tree (job.perform base t).tree := by
  intro out job
  have hnothing : job.effects base t = [] →
      job.filesWritten base t = [] ∧ (job.perform base t).tree = t := by
    intro h
    rw [Job.filesWritten, Job.perform_tree, h]
    exact ⟨rfl, rfl⟩
  cases hscan : t.scan base (Path.join cwd options.path) options.extension with
  | error e => exact Or.inl (hnothing (effects_runJob_of_nothing (Or.inl ⟨e, hscan⟩)))
  | ok files =>
    rcases runJob_does hscan with h | ⟨r, es, hholds, ⟨ws, rfl, hsub, hready⟩, heffects⟩
    · exact Or.inl (hnothing h)
    · refine Or.inr ⟨files, r, ws, rfl, hholds, hsub, hready, ?_, ?_⟩
      · rw [Job.filesWritten, heffects, List.filterMap_cons_none rfl, written_filesOf]
      · exact written_of_effects (Path.join_ne_empty cwd options.out) hsub hready heffects

end YangScript
