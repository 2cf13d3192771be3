import YangScript.Command.Session
import YangScript.Proofs.FirstFailure

/-!
# Every scanned file is accounted for

A file that is scanned does not load, or gives way to another document of its name, or its module
is retained; and a retained module is a submodule, or is written, skipped or counted as an error.
The counts of a summary are shown to add up to the files that were scanned, and its errors to the
files that do not load and the modules that fail, whatever mixture of them a run meets.
-/

set_option autoImplicit false

namespace YangScript

/-! ## Documents that give way to others -/

/-- An item of a list, with the items before it and those behind it. -/
structure Arrival (α : Type) where
  before : List α
  item : α
  after : List α

section

variable {α : Type}

/-- All items of a list, in order; `before` stands before the list. -/
def arrivals (before : List α) : List α → List (Arrival α)
  | [] => []
  | a :: after => ⟨before, a, after⟩ :: arrivals (before ++ [a]) after

theorem length_arrivals (before items : List α) : (arrivals before items).length = items.length := by
  induction items generalizing before with
  | nil => rfl
  | cons a after ih => rw [arrivals, List.length_cons, List.length_cons, ih]

theorem mem_arrivals_iff (before items : List α) (x : Arrival α) :
    x ∈ arrivals before items ↔
      ∃ front, x.before = before ++ front ∧ items = front ++ x.item :: x.after := by
  induction items generalizing before with
  | nil => simp [arrivals]
  | cons a after ih =>
    rw [arrivals, List.mem_cons, ih]
    constructor
    · rintro (rfl | ⟨front, hbefore, hafter⟩)
      · exact ⟨[], (List.append_nil before).symm, rfl⟩
      · exact ⟨a :: front, by simp [hbefore], by rw [hafter]; rfl⟩
    · rintro ⟨front, hbefore, hitems⟩
      cases front with
      | nil =>
        obtain ⟨rfl, rfl⟩ := List.cons.inj hitems
        rw [List.append_nil] at hbefore
        subst hbefore
        exact Or.inl rfl
      | cons b front =>
        obtain ⟨rfl, hafter⟩ := List.cons.inj hitems
        exact Or.inr ⟨front, by simp [hbefore], hafter⟩

/-- Of two arrivals each stands on its side of the other. -/
theorem pairwise_arrivals (before items : List α) :
    (arrivals before items).Pairwise (fun x y => x.item ∈ y.before ∧ y.item ∈ x.after) := by
  induction items generalizing before with
  | nil => exact List.Pairwise.nil
  | cons a after ih =>
    refine List.pairwise_cons.mpr ⟨fun y hy => ?_, ih _⟩
    obtain ⟨front, hbefore, hafter⟩ := (mem_arrivals_iff _ _ y).mp hy
    exact ⟨by simp [hbefore], by simp [hafter]⟩

end

/-- A document gives way to one of its name: to one before it that it is not newer than, so that it
is ignored, or to a newer one behind it, so that it is replaced. -/
def isDisplaced (x : Arrival (String × Module)) : Bool :=
  let m := x.item.2
  x.before.any (fun d => d.2.name == m.name && !isNewer m.current d.2.current) ||
    x.after.any (fun d => d.2.name == m.name && isNewer d.2.current m.current)

theorem isDisplaced_eq_false_iff (x : Arrival (String × Module)) :
    isDisplaced x = false ↔
      (∀ d ∈ x.before, d.2.name = x.item.2.name → isNewer x.item.2.current d.2.current = true) ∧
        ∀ d ∈ x.after, d.2.name = x.item.2.name →
          isNewer d.2.current x.item.2.current = false := by
  simp [isDisplaced]

section

variable (docs : List (String × Module))

/-- The documents that give way to others. -/
def displaced : List (Arrival (String × Module)) := (arrivals [] docs).filter isDisplaced

/-- The documents that give way to no other. -/
def undisplaced : List (Arrival (String × Module)) :=
  (arrivals [] docs).filter (fun x => !isDisplaced x)

theorem length_undisplaced :
    docs.length = (undisplaced docs).length + (displaced docs).length := by
  have hparts := (List.filter_append_perm isDisplaced (arrivals [] docs)).length_eq
  rw [List.length_append, length_arrivals] at hparts
  rw [undisplaced, displaced, ← hparts, Nat.add_comm]

theorem mem_undisplaced_iff (x : Arrival (String × Module)) :
    x ∈ undisplaced docs ↔ docs = x.before ++ x.item :: x.after ∧ isDisplaced x = false := by
  rw [undisplaced, List.mem_filter, mem_arrivals_iff, Bool.not_eq_true']
  simp

theorem exists_undisplaced_iff (m : Module) :
    (∃ x ∈ undisplaced docs, x.item.2 = m) ↔ ∃ text, Newest docs text m := by
  simp only [mem_undisplaced_iff, isDisplaced_eq_false_iff]
  constructor
  · rintro ⟨⟨before, ⟨text, m⟩, after⟩, ⟨hdocs, hnewest⟩, rfl⟩
    exact ⟨text, before, after, hdocs, hnewest⟩
  · rintro ⟨text, before, after, hdocs, hnewest⟩
    exact ⟨⟨before, (text, m), after⟩, ⟨hdocs, hnewest⟩, rfl⟩

/-- Of two documents of one name, one gives way to the other. -/
theorem names_undisplaced_nodup : ((undisplaced docs).map (fun x => x.item.2.name)).Nodup := by
  refine List.pairwise_map.mpr ?_
  have hpairs : (undisplaced docs).Pairwise (fun x y => x.item ∈ y.before ∧ y.item ∈ x.after) :=
    (pairwise_arrivals [] docs).sublist List.filter_sublist
  refine hpairs.imp_of_mem fun {x y} hx hy hxy hname => ?_
  rw [mem_undisplaced_iff, isDisplaced_eq_false_iff] at hx hy
  have htrue := hy.2.1 x.item hxy.1 hname
  have hfalse := hx.2.2 y.item hxy.2 hname.symm
  exact absurd (htrue.symm.trans hfalse) (by decide)

end

theorem nodup_of_names {ms : List Module} (h : (ms.map Module.name).Nodup) : ms.Nodup :=
  (List.pairwise_map.mp h).imp fun hname hm => hname (congrArg Module.name hm)

namespace Registry

variable {docs : List (String × Module)} {r r' : Registry}

/-- The documents determine which modules are held, and in which order. -/
theorem Holds.modules_eq (h : r.Holds docs) (h' : r'.Holds docs) : r.modules = r'.modules :=
  r.sorted.eq_of_mem_iff r'.sorted fun m => by rw [h.mem_modules_iff, h'.mem_modules_iff]

/-- Every document that is not held has given way to another. -/
theorem Holds.length_eq (h : r.Holds docs) :
    docs.length = r.modules.length + (displaced docs).length := by
  have hkept : ((undisplaced docs).map (fun x => x.item.2)).Nodup := by
    refine nodup_of_names ?_
    rw [List.map_map]
    exact names_undisplaced_nodup docs
  have hheld : r.modules.Nodup := nodup_of_names r.sorted.nodup
  have hperm : ((undisplaced docs).map (fun x => x.item.2)).Perm r.modules := by
    refine (List.perm_ext_iff_of_nodup hkept hheld).mpr fun m => ?_
    rw [List.mem_map, exists_undisplaced_iff, h.mem_modules_iff]
  rw [length_undisplaced, ← hperm.length_eq, List.length_map]

end Registry

/-! ## Files that do not load -/

/-- The files that do not load: they cannot be read, or what they hold is no module. -/
def unloadable (t : FileTree) (base : Location) (files : List String) : List String :=
  files.filter (fun file => !(Module.ofReading (t.read base file)).isOk)

theorem unloadable_cons_error {t : FileTree} {base : Location} {file : String} {e : FileError}
    (h : Module.ofReading (t.read base file) = .error e) (files : List String) :
    unloadable t base (file :: files) = file :: unloadable t base files := by
  simp [unloadable, h, Except.isOk, Except.toBool]

theorem unloadable_cons_ok {t : FileTree} {base : Location} {file : String} {m : Module}
    (h : Module.ofReading (t.read base file) = .ok m) (files : List String) :
    unloadable t base (file :: files) = unloadable t base files := by
  simp [unloadable, h, Except.isOk, Except.toBool]

/-- A file is a document or does not load. -/
theorem length_documents (t : FileTree) (base : Location) (files : List String) :
    files.length = (documents t base files).length + (unloadable t base files).length := by
  induction files with
  | nil => rfl
  | cons file files ih =>
    cases hm : Module.ofReading (t.read base file) with
    | error e =>
      have hdocs : documents t base (file :: files) = documents t base files := by
        simp [documents, loadable?_of_error hm]
      rw [unloadable_cons_error hm, hdocs, List.length_cons, List.length_cons]
      omega
    | ok m =>
      obtain ⟨text, hload⟩ := loadable?_of_ok hm
      have hdocs : documents t base (file :: files) = (text, m) :: documents t base files := by
        simp [documents, hload]
      rw [unloadable_cons_ok hm, hdocs, List.length_cons, List.length_cons]
      omega

/-- Loading counts the files that do not load. -/
theorem errors_loadAll {bail : Bool} {base : Location} {t : FileTree} {files : List String}
    {s l : Loaded} (h : ((loadAll bail files s).perform base t).value = .ok l) :
    l.errors = s.errors + (unloadable t base files).length := by
  induction files generalizing s with
  | nil =>
    cases h
    rfl
  | cons file files ih =>
    rw [loadAll, Job.perform, Job.perform] at h
    cases hm : Module.ofReading (t.read base file) with
    | error e =>
      rw [hm] at h
      cases bail with
      | true => exact absurd h (by simp [failWith, Job.perform])
      | false =>
        have hrest : l.errors = s.errors + 1 + (unloadable t base files).length := ih h
        rw [hrest, unloadable_cons_error hm, List.length_cons]
        omega
    | ok m =>
      rw [hm] at h
      rw [unloadable_cons_ok hm]
      cases haccepts : s.registry.accepts m with
      | true =>
        simp only [haccepts, if_true] at h
        exact ih (s := { s with registry := s.registry.insert m }) h
      | false =>
        simp only [haccepts, Bool.false_eq_true, if_false, Job.perform] at h
        exact ih h

/-! ## Modules that are handled -/

/-- The modules that a summary tells of. -/
def Summary.handled (s : Summary) : Nat := s.errors + s.skipped + s.written.length

/-- Whatever the disk answers, a stage that is not ended by a failure has handled `total`. -/
def Handles (total : Nat) (stage : Stage Summary) : Prop :=
  ∀ base t s, (stage.perform base t).value = .ok s → s.handled = total

section

variable {total : Nat} {next : Stage Summary}

theorem handles_done {s : Summary} (h : s.handled = total) : Handles total (.done (.ok s)) := by
  intro base t s' hs
  cases hs
  exact h

theorem handles_say (n : RunNotice) (h : Handles total next) : Handles total (.say n next) :=
  fun base t s hs => h base t s hs

theorem handles_sayAll (ns : List RunNotice) (h : Handles total next) :
    Handles total (Job.sayAll ns next) := by
  induction ns with
  | nil => exact h
  | cons n ns ih => exact handles_say n ih

theorem handles_failWith (bail : Bool) (f : Failure) (h : Handles total next) :
    Handles total (failWith bail f next) := by
  cases bail with
  | true =>
    intro base t s hs
    exact absurd hs (by simp [failWith, Job.perform])
  | false => exact handles_say _ h

/-- A module is handled once, however it ends. -/
theorem handles_moduleJob (options : Options) (out : String) (m : Module) (s : Summary)
    {next : Summary → Stage Summary}
    (hnext : ∀ s', s'.handled = s.handled + 1 → Handles total (next s')) :
    Handles total (moduleJob options out m s next) := by
  have herror : Handles total (next { s with errors := s.errors + 1 }) := by
    refine hnext _ ?_
    simp only [Summary.handled]
    omega
  refine handles_sayAll _ ?_
  cases (m.prepare options.source).value with
  | failure f => exact handles_failWith _ f herror
  | noFields =>
    refine handles_say _ (hnext _ ?_)
    simp only [Summary.handled]
    omega
  | ready file text =>
    intro base t
    dsimp only
    rw [Job.perform]
    cases (t.write base (Path.join out file) text).result with
    | error e => exact handles_failWith _ _ herror base _
    | ok u =>
      refine handles_say _ (hnext _ ?_) base _
      simp only [Summary.handled, List.length_append, List.length_singleton]
      omega

/-- The modules that are no submodules. -/
def full (ms : List Module) : List Module := ms.filter (fun m => !m.isSubmodule)

/-- Writing handles all modules but the submodules. -/
theorem handles_writeAll (options : Options) (out : String) (ms : List Module) (s : Summary) :
    Handles (s.handled + (full ms).length) (writeAll options out ms s) := by
  induction ms generalizing s with
  | nil => exact handles_done rfl
  | cons m ms ih =>
    rw [writeAll]
    cases hsub : m.isSubmodule with
    | true =>
      have hfull : full (m :: ms) = full ms := by simp [full, hsub]
      rw [hfull]
      exact handles_say _ (ih s)
    | false =>
      have hfull : (full (m :: ms)).length = (full ms).length + 1 := by simp [full, hsub]
      refine handles_moduleJob options out m s fun s' hs' => ?_
      have hrest := ih s'
      rw [hs'] at hrest
      rwa [hfull, Nat.add_comm (full ms).length, ← Nat.add_assoc]

theorem handles_andThen {stage : Stage Summary} {next : Summary → Stage Summary}
    (h : Handles total stage) (hnext : ∀ s, s.handled = total → Handles total (next s)) :
    Handles total (andThen stage next) := by
  intro base t s hs
  rw [andThen, Job.perform_bind] at hs
  dsimp only at hs
  cases hstage : (stage.perform base t).value with
  | error f =>
    rw [hstage] at hs
    exact absurd hs (by simp [Job.perform])
  | ok a =>
    rw [hstage] at hs
    exact hnext a (h base t a hstage) base _ s hs

end

/-- A run over some files tells of those that do not load and of the modules that are full. -/
theorem handled_runFiles {options : Options} (hbail : options.bail = false) {out : String}
    {files : List String} {base : Location} {t : FileTree} {s : Summary}
    (h : ((runFiles options out files).perform base t).value = .ok s) :
    ∃ r : Registry, r.Holds (documents t base files) ∧
      s.handled = (unloadable t base files).length + (full r.modules).length := by
  obtain ⟨errors, log, hload, -⟩ := loadAll_perform base files ⟨Registry.empty, 0⟩ t
  have hholds := Registry.holds_empty.insertAll (documents t base files)
  have herrors := errors_loadAll (congrArg Performed.value hload)
  generalize Registry.empty.insertAll ((documents t base files).map Prod.snd) = r
    at hload hholds herrors
  have hrest : Handles ((unloadable t base files).length + (full r.modules).length)
      (andThen (writeAll options out r.modules ⟨[], 0, errors⟩) fun s =>
        .say (.completed s.errors) (.done (.ok s))) := by
    refine handles_andThen ?_ fun s hs => handles_say _ (handles_done hs)
    have hwrite := handles_writeAll options out r.modules ⟨[], 0, errors⟩
    have hstart : Summary.handled ⟨[], 0, errors⟩ = (unloadable t base files).length := by
      simpa [Summary.handled] using herrors
    rwa [hstart] at hwrite
  refine ⟨r, hholds, ?_⟩
  rw [runFiles, hbail, perform_andThen hload] at h
  simp only [Job.perform] at h
  cases hdirs : (t.makeDirs base out).result with
  | error e =>
    rw [hdirs] at h
    exact absurd h (by simp [Job.perform])
  | ok u =>
    rw [hdirs] at h
    exact hrest base _ s h

/-! ## Modules that fail -/

/-- A module that is no submodule fails by its keys, by the name of its file, by its root, or
because its file cannot be written. -/
def Module.Fails (options : SourceOptions) (base : Location) (out : String) (t : FileTree)
    (m : Module) : Prop :=
  m.isSubmodule = false ∧
    ((∃ f, m.validate = .error f) ∨ fileName? m.name = none ∨
      (∃ e, (m.source options).value = .error e) ∨
      ∃ text e, (m.source options).value = .ok (some text) ∧
        (t.write base (outputFile out m.name) text).result = .error e)

section

variable (options : SourceOptions) (base : Location) (out : String) (t : FileTree)

/-- The modules that are neither submodules nor written nor skipped. -/
def failing (ms : List Module) : List Module :=
  ms.filter fun m => !m.isSubmodule && !m.isWritten options base out t && !m.isSkipped options

variable {options base out t}

theorem not_skipped_of_written {m : Module} (h : m.isWritten options base out t = true) :
    m.isSkipped options = false := by
  obtain ⟨text, hready, -⟩ := Module.isWritten_iff.mp h
  simp [Module.isSkipped, hready]

theorem full_of_written {m : Module} (h : m.isWritten options base out t = true) :
    m.isSubmodule = false := by
  obtain ⟨text, hready, -⟩ := Module.isWritten_iff.mp h
  exact not_submodule_of_prepare hready (by simp)

theorem full_of_skipped {m : Module} (h : m.isSkipped options = true) :
    m.isSubmodule = false :=
  not_submodule_of_prepare (Module.isSkipped_iff.mp h) (by simp)

theorem fails_iff {m : Module} (hfull : m.isSubmodule = false) :
    m.Fails options base out t ↔
      m.isWritten options base out t = false ∧ m.isSkipped options = false := by
  have hprepare := m.prepare_eq options
  rw [Module.Fails, Module.isWritten, Module.isSkipped, hprepare]
  cases hvalid : m.validate with
  | error f => simp [hfull]
  | ok u =>
    cases hfile : fileName? m.name with
    | none => simp [hfull]
    | some file =>
      obtain rfl := fileName?_eq hfile
      cases hsource : (m.source options).value with
      | error e => simp [hfull, Prepared.ofSource]
      | ok made =>
        cases made with
        | none => simp [hfull, Prepared.ofSource]
        | some text =>
          cases hw : (t.write base (outputFile out m.name) text).result with
          | error e =>
            rw [outputFile] at hw
            simp [hfull, Prepared.ofSource, outputFile, hw, Except.isOk, Except.toBool]
          | ok v =>
            rw [outputFile] at hw
            simp [hfull, Prepared.ofSource, outputFile, hw, Except.isOk, Except.toBool]

theorem mem_failing_iff (ms : List Module) (m : Module) :
    m ∈ failing options base out t ms ↔ m ∈ ms ∧ m.Fails options base out t := by
  rw [failing, List.mem_filter]
  refine and_congr_right fun _ => ?_
  cases hsub : m.isSubmodule with
  | true => simp [Module.Fails, hsub]
  | false => simp [fails_iff hsub]

variable (options base out t)

/-- A module that is no submodule is written, skipped or failing. -/
theorem length_full (ms : List Module) :
    (full ms).length = (writtenNames options base out t ms).length +
      (skippedNames options ms).length + (failing options base out t ms).length := by
  induction ms with
  | nil => rfl
  | cons m ms ih =>
    rw [writtenNames_cons, skippedNames_cons, full, failing, List.filter_cons, List.filter_cons]
    rw [full, failing] at ih
    cases hw : m.isWritten options base out t with
    | true =>
      simp [full_of_written hw, not_skipped_of_written hw, ih]
      omega
    | false =>
      cases hs : m.isSkipped options with
      | true =>
        simp [full_of_skipped hs, ih]
        omega
      | false =>
        cases m.isSubmodule with
        | true => simp [ih]
        | false =>
          simp [ih]
          omega

end

/-- The modules of a list are submodules or full. -/
theorem length_submodules (ms : List Module) :
    ms.length = (ms.filter Module.isSubmodule).length + (full ms).length := by
  rw [full, ← List.length_append, (List.filter_append_perm Module.isSubmodule ms).length_eq]

/-! ## The run as a whole -/

section

variable {t : FileTree} {base : Location} {cwd : String} {options : Options} {s : Summary}

/-- A run that comes to a summary is the same whether or not a failure would have ended it, and if
it would have, there is none. -/
theorem perform_plain_of_ok (h : ((runJob cwd options).perform base t).value = .ok s) :
    (runJob cwd options).perform base t =
        (runJob cwd { options with bail := false }).perform base t ∧
      (options.bail = true → s.errors = 0) := by
  rw [runJob_eq] at h ⊢
  by_cases hbail : options.bail = true
  · rw [if_pos hbail] at h ⊢
    obtain ⟨hsame, hcount⟩ := (tallies_runJob { options with bail := false } cwd).of_cut_ok h
    exact ⟨hsame, fun _ => hcount⟩
  · rw [if_neg hbail]
    exact ⟨rfl, fun h => absurd h hbail⟩

/-- The counts of a summary, by what became of the retained modules. -/
theorem summary_counts {files : List String}
    (hscan : t.scan base (Path.join cwd options.path) options.extension = .ok files)
    (hfiles : files ≠ []) (hrun : ((runJob cwd options).perform base t).value = .ok s) :
    let out := Path.join cwd options.out
    let t' := (t.makeDirs base out).tree
    (t.makeDirs base out).result = .ok () ∧
    ∃ r : Registry, r.Holds (documents t base files) ∧
      s.written = (writtenNames options.source base out t' r.modules).map (outputFile out) ∧
      s.skipped = (skippedNames options.source r.modules).length ∧
      s.errors = (unloadable t base files).length +
        (failing options.source base out t' r.modules).length := by
  intro out t'
  have hplain : ({ options with bail := false } : Options).bail = false := rfl
  obtain ⟨file, files, rfl⟩ := List.exists_cons_of_ne_nil hfiles
  have hjob := (perform_plain_of_ok hrun).1.trans (runJob_perform hscan)
  have hvalue := (congrArg Performed.value hjob).symm.trans hrun
  have hdirs : (t.makeDirs base out).result = .ok () := makeDirs_of_runFiles hplain hvalue
  obtain ⟨r, errors, t'', log, hholds, hperform, -⟩ :=
    runFiles_perform hplain (file :: files) hdirs
  obtain ⟨r', hholds', hhandled⟩ := handled_runFiles hplain hvalue
  have hsummary := Except.ok.inj (hvalue.symm.trans (congrArg Performed.value hperform))
  have hwritten := congrArg Summary.written hsummary
  have hskipped := congrArg Summary.skipped hsummary
  refine ⟨hdirs, r, hholds, hwritten, hskipped, ?_⟩
  have hcount := length_full options.source base out t' r.modules
  rw [hholds'.modules_eq hholds, Summary.handled, hwritten, hskipped, List.length_map] at hhandled
  dsimp only at hhandled
  change s.errors + _ + (writtenNames options.source base out t' r.modules).length = _ at hhandled
  omega

/-- The program succeeds if its run comes to a summary without errors. -/
theorem code_program {args : List String} (hargs : Options.parse args = .ok options) :
    ((program cwd args).perform base t).value.code = 0 ↔
      ∃ s, ((runJob cwd options).perform base t).value = .ok s ∧ s.errors = 0 := by
  rw [program, hargs]
  dsimp only
  rw [Job.perform_bind]
  dsimp only
  cases ((runJob cwd options).perform base t).value with
  | error f => simp [Job.perform]
  | ok s => simp [Job.perform, Summary.isSuccess]

end

/-- Every file that is scanned ends in one way: as an error, as a module that is skipped, written or
retained as a submodule, or as a document that gives way to another of its name. The errors are the
files that do not load and the modules that fail, and the program succeeds if there are none. -/
theorem every_file_accounted_for (t : FileTree) (base : Location) (cwd : String)
    (args : List String) (options : Options) (hargs : Options.parse args = .ok options) :
    let out := Path.join cwd options.out
    let run := (runJob cwd options).perform base t
    let code := ((program cwd args).perform base t).value.code
    (code = 0 ↔ ∃ s, run.value = .ok s ∧ s.errors = 0) ∧
    ∀ files s, t.scan base (Path.join cwd options.path) options.extension = .ok files →
      files ≠ [] → run.value = .ok s →
      ∃ retained failed : List Module,
        (retained.map Module.name).Pairwise (· < ·) ∧
        (∀ m, m ∈ retained ↔ ∃ text, Newest (documents t base files) text m) ∧
        failed.Sublist retained ∧
        (∀ m, m ∈ failed ↔
          m ∈ retained ∧ m.Fails options.source base out (t.makeDirs base out).tree) ∧
        files.length = s.errors + s.skipped + s.written.length +
          (retained.filter Module.isSubmodule).length +
          (displaced (documents t base files)).length ∧
        s.errors = (unloadable t base files).length + failed.length ∧
        (code = 0 ↔ unloadable t base files = [] ∧ failed = []) := by
  intro out run code
  have hcode : code = 0 ↔ ∃ s, run.value = .ok s ∧ s.errors = 0 := code_program hargs
  refine ⟨hcode, fun files s hscan hfiles hrun => ?_⟩
  obtain ⟨-, r, hholds, hwritten, hskipped, herrors⟩ := summary_counts hscan hfiles hrun
  change s.written = (writtenNames _ base out (t.makeDirs base out).tree _).map _ at hwritten
  change s.errors = _ + (failing _ base out (t.makeDirs base out).tree _).length at herrors
  refine ⟨r.modules, failing options.source base out (t.makeDirs base out).tree r.modules,
    List.pairwise_map.mpr r.sorted, hholds.mem_modules_iff, List.filter_sublist,
    mem_failing_iff r.modules, ?_, herrors, ?_⟩
  · have hfull := length_full options.source base out (t.makeDirs base out).tree r.modules
    have hdocs := length_documents t base files
    have hheld := hholds.length_eq
    have hsubmodules := length_submodules r.modules
    rw [hwritten, List.length_map]
    omega
  · rw [hcode, hrun]
    have hnone : (∃ s', Except.ok (ε := Failure) s = .ok s' ∧ s'.errors = 0) ↔ s.errors = 0 := by
      simp
    rw [hnone, herrors, Nat.add_eq_zero_iff, List.length_eq_zero_iff, List.length_eq_zero_iff]

/-- One of the two files is no text, so the program does not succeed. -/
theorem every_file_accounted_for_brokenTree :
    let code := ((program "/" ["-p", "in", "-o", "out"]).perform [] brokenTree).value.code
    let docs := documents brokenTree [] ["/in/a.xml", "/in/m.xml"]
    code ≠ 0 ∧ ∃ s, ((runJob "/" leafOptions).perform [] brokenTree).value = .ok s ∧
      ∃ retained failed : List Module, s.errors = 1 + failed.length ∧
        2 = s.errors + s.skipped + s.written.length +
          (retained.filter Module.isSubmodule).length + (displaced docs).length := by
  intro code docs
  have hargs : Options.parse ["-p", "in", "-o", "out"] = .ok leafOptions := rfl
  obtain ⟨-, hsummary⟩ := every_file_accounted_for brokenTree [] "/" _ leafOptions hargs
  have hscan : brokenTree.scan [] (Path.join "/" leafOptions.path) leafOptions.extension =
      .ok ["/in/a.xml", "/in/m.xml"] := rfl
  obtain ⟨s, hs⟩ : ∃ s, ((runJob "/" leafOptions).perform [] brokenTree).value = .ok s :=
    exists_summary rfl hscan rfl
  have hbroken : Module.ofReading (brokenTree.read [] "/in/a.xml") = .error (.io .notText) := rfl
  have hleaf : Module.ofReading (brokenTree.read [] "/in/m.xml") = .ok leafModule := by
    have hread : brokenTree.read [] "/in/m.xml" = .ok leafDocument.text := rfl
    rw [hread, Module.ofReading,
      Xml.Document.ofDocument_of_writes leafDocument_writes leafModule_expressible]
    rfl
  have hfiles : unloadable brokenTree [] ["/in/a.xml", "/in/m.xml"] = ["/in/a.xml"] := by
    rw [unloadable_cons_error hbroken, unloadable_cons_ok hleaf]
    rfl
  obtain ⟨retained, failed, -, -, -, -, hcount, herrors, hcode⟩ :=
    hsummary _ s hscan (by simp) hs
  rw [hfiles] at herrors hcode
  exact ⟨fun h => absurd (hcode.mp h).1 (by simp), s, hs, retained, failed, herrors, hcount⟩

end YangScript
