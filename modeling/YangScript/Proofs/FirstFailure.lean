import YangScript.Proofs.RunEffects

/-!
# The run that ends at its first failure

Two runs over the same tree differ in one option: whether a failure ends the run or is said and
counted. They come to the same if there is no failure. Otherwise the one ends with the failure that
the other says first, and has written the first of the files that the other writes.
-/

set_option autoImplicit false

namespace YangScript

/-- The errors that a stage has counted in the end are those it began with and all that it said. -/
def Tallies {σ : Type} (errors : σ → Nat) (count : Nat) (stage : Stage σ) : Prop :=
  ∀ base t s, (stage.perform base t).value = .ok s →
    errors s = count + (failures (stage.perform base t).log).length

section

variable {σ τ : Type} {errors : σ → Nat} {count : Nat} {next : Stage σ}

theorem tallies_done {s : σ} (h : errors s = count) : Tallies errors count (.done (.ok s)) := by
  intro base t s' hs
  cases hs
  exact h

theorem tallies_error (errors : σ → Nat) (count : Nat) (f : Failure) :
    Tallies errors count (.done (.error f)) := by
  intro base t s h
  exact absurd h (by simp [Job.perform])

theorem tallies_say {n : RunNotice} (hn : n.failure? = none) (h : Tallies errors count next) :
    Tallies errors count (.say n next) := by
  intro base t s hs
  rw [h base t s hs, Job.perform, failures, failures, List.filterMap_cons_none hn]

theorem tallies_sayAll {ns : List RunNotice} (hns : failures ns = [])
    (h : Tallies errors count next) : Tallies errors count (Job.sayAll ns next) := by
  intro base t s hs
  rw [Job.perform_sayAll] at hs ⊢
  rw [h base t s hs, failures_append, hns, List.nil_append]

/-- A failure is counted where it is said. -/
theorem tallies_failWith (bail : Bool) (f : Failure) (h : Tallies errors (count + 1) next) :
    Tallies errors count (failWith bail f next) := by
  cases bail with
  | true => exact tallies_error errors count f
  | false =>
    intro base t s hs
    have hlog : failures ((failWith false f next).perform base t).log =
        f :: failures (next.perform base t).log := rfl
    rw [h base t s hs, hlog, List.length_cons]
    omega

theorem tallies_andThen {errors' : τ → Nat} {stage : Stage σ} {next : σ → Stage τ}
    (h : Tallies errors count stage) (hnext : ∀ s, Tallies errors' (errors s) (next s)) :
    Tallies errors' count (andThen stage next) := by
  intro base t s hs
  rw [andThen, Job.perform_bind] at hs ⊢
  dsimp only at hs ⊢
  cases hstage : (stage.perform base t).value with
  | error f =>
    rw [hstage] at hs
    exact absurd hs (by simp [Job.perform])
  | ok a =>
    rw [hstage] at hs
    have hsecond := hnext a base _ s hs
    have hfirst := h base t a hstage
    rw [failures_append, List.length_append]
    dsimp only
    omega

end

theorem tallies_loadAll (bail : Bool) (files : List String) (s : Loaded) :
    Tallies Loaded.errors s.errors (loadAll bail files s) := by
  induction files generalizing s with
  | nil => exact tallies_done rfl
  | cons file files ih =>
    refine tallies_say rfl fun base t => ?_
    rw [Job.perform]
    cases Module.ofReading (t.read base file) with
    | error e => exact tallies_failWith bail _ (ih { s with errors := s.errors + 1 }) base t
    | ok m =>
      cases haccepts : s.registry.accepts m with
      | true =>
        simp only [haccepts, if_true]
        exact ih { s with registry := s.registry.insert m } base t
      | false =>
        simp only [haccepts, Bool.false_eq_true, if_false]
        exact tallies_say rfl (ih s) base t

section

variable (options : Options) (out : String)

theorem tallies_moduleJob (m : Module) (s : Summary) {next : Summary → Stage Summary}
    (hnext : ∀ s, Tallies Summary.errors s.errors (next s)) :
    Tallies Summary.errors s.errors (moduleJob options out m s next) := by
  refine tallies_sayAll (failures_output _) ?_
  cases (m.prepare options.source).value with
  | failure f => exact tallies_failWith _ f (hnext { s with errors := s.errors + 1 })
  | noFields => exact tallies_say rfl (hnext { s with skipped := s.skipped + 1 })
  | ready file text =>
    intro base t
    dsimp only
    rw [Job.perform]
    cases (t.write base (Path.join out file) text).result with
    | error e => exact tallies_failWith _ _ (hnext { s with errors := s.errors + 1 }) base _
    | ok u => exact tallies_say rfl (hnext _) base _

theorem tallies_writeAll (ms : List Module) (s : Summary) :
    Tallies Summary.errors s.errors (writeAll options out ms s) := by
  induction ms generalizing s with
  | nil => exact tallies_done rfl
  | cons m ms ih =>
    rw [writeAll]
    cases m.isSubmodule with
    | true => exact tallies_say rfl (ih s)
    | false => exact tallies_moduleJob options out m s ih

theorem tallies_runFiles (files : List String) :
    Tallies Summary.errors 0 (runFiles options out files) := by
  refine tallies_andThen (tallies_loadAll options.bail files ⟨Registry.empty, 0⟩) ?_
  intro loaded base t
  rw [Job.perform]
  cases (t.makeDirs base out).result with
  | error e => exact tallies_error _ _ _ base _
  | ok u =>
    refine tallies_andThen (tallies_writeAll options out _ ⟨[], 0, loaded.errors⟩) ?_ base _
    intro s
    exact tallies_say rfl (tallies_done rfl)

/-- A run counts the failures that it says. -/
theorem tallies_runJob (cwd : String) : Tallies Summary.errors 0 (runJob cwd options) := by
  refine tallies_say rfl fun base t => ?_
  rw [Job.perform]
  split
  · exact tallies_say rfl (tallies_done rfl) base t
  · exact tallies_say rfl (tallies_done rfl) base t
  · exact tallies_runFiles options _ _ base t

end

/-- The first notice at the level of errors is the first failure that is said. -/
theorem find?_error_eq (log : List RunNotice) :
    log.find? (fun n => decide (n.level = .error)) = (failures log).head?.map .failed := by
  induction log with
  | nil => rfl
  | cons n log ih =>
    by_cases hn : n.level = .error
    · obtain ⟨f, rfl⟩ := n.level_eq_error_iff.mp hn
      rw [List.find?_cons_of_pos (by simpa using hn)]
      rfl
    · have hnone : n.failure? = none := by
        cases hf : n with
        | failed f => exact absurd (n.level_eq_error_iff.mpr ⟨f, hf⟩) hn
        | _ => rfl
      rw [List.find?_cons_of_neg (by simpa using hn), ih, failures, failures,
        List.filterMap_cons_none hnone]

/-- A stage cut short comes to the same as the stage, or ends with the failure that this says
first. -/
theorem perform_cut_cases {σ : Type} (base : Location) (stage : Stage σ) (t : FileTree) :
    failures (stage.perform base t).log = [] ∧
        stage.cut.perform base t = stage.perform base t ∨
      ∃ f fs, failures (stage.perform base t).log = f :: fs ∧
        (stage.cut.perform base t).value = .error f := by
  cases h : failures (stage.perform base t).log with
  | nil => exact Or.inl ⟨rfl, Job.perform_cut_of_no_failure base stage t h⟩
  | cons f fs => exact Or.inr ⟨f, fs, rfl, Job.perform_cut_of_failure base stage t h⟩

namespace Tallies

variable {σ : Type} {errors : σ → Nat} {stage : Stage σ} {base : Location} {t : FileTree}

/-- A stage that is not cut short in the end has not counted anything. -/
theorem of_cut_ok (h : Tallies errors 0 stage) {s : σ}
    (hs : (stage.cut.perform base t).value = .ok s) :
    stage.cut.perform base t = stage.perform base t ∧ errors s = 0 := by
  rcases perform_cut_cases base stage t with ⟨hnone, hsame⟩ | ⟨f, fs, -, hvalue⟩
  · refine ⟨hsame, ?_⟩
    rw [hsame] at hs
    rw [h base t s hs, hnone]
    rfl
  · exact absurd (hvalue.symm.trans hs) (by simp)

theorem cut_of_none (h : Tallies errors 0 stage) {s : σ}
    (hs : (stage.perform base t).value = .ok s) (hcount : errors s = 0) :
    stage.cut.perform base t = stage.perform base t := by
  rcases perform_cut_cases base stage t with ⟨-, hsame⟩ | ⟨f, fs, hfailures, -⟩
  · exact hsame
  · have hsaid := h base t s hs
    rw [hfailures, List.length_cons] at hsaid
    omega

theorem of_cut_error (h : Tallies errors 0 stage) {e : Failure}
    (he : (stage.cut.perform base t).value = .error e) :
    ((∃ f, (stage.perform base t).value = .error f) ∨
      ∃ s, (stage.perform base t).value = .ok s ∧ 1 ≤ errors s) ∧
    ∀ first, (failures (stage.perform base t).log).head? = some first → first = e := by
  rcases perform_cut_cases base stage t with ⟨hnone, hsame⟩ | ⟨f, fs, hfailures, hvalue⟩
  · rw [hsame] at he
    exact ⟨Or.inl ⟨e, he⟩, by simp [hnone]⟩
  · have hfe : f = e := Except.error.inj (hvalue.symm.trans he)
    constructor
    · cases hn : (stage.perform base t).value with
      | error f' => exact Or.inl ⟨f', rfl⟩
      | ok s =>
        have hsaid := h base t s hn
        rw [hfailures, List.length_cons] at hsaid
        exact Or.inr ⟨s, rfl, by omega⟩
    · intro first hfirst
      rw [hfailures, List.head?_cons, Option.some.injEq] at hfirst
      exact hfirst.symm.trans hfe

end Tallies

/-- The files that a run writes come in the order of the names of their modules, and each holds its
text when the run is over. -/
theorem runJob_files (t : FileTree) (base : Location) (cwd : String) (options : Options) :
    let job := runJob cwd options
    (∃ names : List String, names.Pairwise (· < ·) ∧ (job.filesWritten base t).map Prod.fst =
        names.map (outputFile (Path.join cwd options.out))) ∧
      ∀ w ∈ job.filesWritten base t, (job.perform base t).tree.read base w.1 = .ok w.2 := by
  intro job
  rcases runJob_tree t base cwd options with
    ⟨hnone, -⟩ | ⟨files, r, ws, -, -, hsub, hready, hfiles, hwritten⟩
  · rw [hnone]
    exact ⟨⟨[], List.Pairwise.nil, rfl⟩, by simp⟩
  · rw [hfiles]
    constructor
    · refine ⟨ws.map fun w => w.1.name, ?_, by simp⟩
      have hsorted := List.pairwise_map.mpr (r.sorted.sublist hsub)
      rwa [List.map_map] at hsorted
    · intro w hw
      obtain ⟨w', hw', rfl⟩ := List.mem_map.mp hw
      exact hwritten.read_eq (Path.join_ne_empty cwd options.out) hready w' hw'

/-- Ending a run at its first failure cuts it short and changes nothing else. -/
theorem bail_cuts_run_short (t : FileTree) (base : Location) (cwd : String) (options : Options) :
    let ended := runJob cwd { options with bail := true }
    let whole := runJob cwd { options with bail := false }
    let b := ended.perform base t
    let n := whole.perform base t
    (∀ s, b.value = .ok s → n.value = .ok s ∧ s.errors = 0 ∧ n.tree = b.tree) ∧
    (∀ s, n.value = .ok s → s.errors = 0 → b.value = .ok s ∧ b.tree = n.tree) ∧
    (∀ e, b.value = .error e →
      ((∃ f, n.value = .error f) ∨ ∃ s, n.value = .ok s ∧ 1 ≤ s.errors) ∧
      ∀ first, n.log.find? (fun x => decide (x.level = .error)) = some first →
        first.message = e.message) ∧
    ended.filesWritten base t <+: whole.filesWritten base t ∧
    (∃ names : List String, names.Pairwise (· < ·) ∧ (whole.filesWritten base t).map Prod.fst =
      names.map (outputFile (Path.join cwd options.out))) ∧
    ∀ w ∈ ended.filesWritten base t,
      b.tree.read base w.1 = .ok w.2 ∧ n.tree.read base w.1 = .ok w.2 := by
  intro ended whole b n
  have hended : ended = whole.cut := (runJob_cut options cwd).symm
  have hb : b = whole.cut.perform base t := congrArg (fun job => job.perform base t) hended
  have htally : Tallies Summary.errors 0 whole := tallies_runJob { options with bail := false } cwd
  have hfront : ended.filesWritten base t <+: whole.filesWritten base t := by
    rw [hended]
    exact (Job.effects_cut_prefix base whole t).filterMap _
  obtain ⟨hnames, hwhole⟩ := runJob_files t base cwd { options with bail := false }
  obtain ⟨-, hheld⟩ := runJob_files t base cwd { options with bail := true }
  rw [hb]
  refine ⟨?ended, ?whole, ?failed, hfront, hnames, ?contents⟩
  case ended =>
    intro s hs
    obtain ⟨hsame, hcount⟩ := htally.of_cut_ok hs
    rw [hsame] at hs ⊢
    exact ⟨hs, hcount, rfl⟩
  case whole =>
    intro s hs hcount
    rw [htally.cut_of_none hs hcount]
    exact ⟨hs, rfl⟩
  case failed =>
    intro e he
    obtain ⟨hvalue, hfirst⟩ := htally.of_cut_error he
    refine ⟨hvalue, fun first hfind => ?_⟩
    rw [find?_error_eq] at hfind
    obtain ⟨f, hhead, rfl⟩ := Option.map_eq_some_iff.mp hfind
    rw [← hfirst f hhead]
    rfl
  case contents =>
    intro w hw
    rw [← hb]
    exact ⟨hheld w hw, hwhole w (hfront.subset hw)⟩

/-- The directory of `leafTree` with a file in front of the other that is no text. -/
def brokenTree : FileTree := leafTree.place ["in", "a.xml"] (.file .binary)

theorem bail_cuts_run_short_brokenTree :
    let failure := Failure.load "/in/a.xml" (.io .notText)
    ((runJob "/" { leafOptions with bail := true }).perform [] brokenTree).value =
        .error failure ∧
      (∃ s, ((runJob "/" { leafOptions with bail := false }).perform [] brokenTree).value = .ok s ∧
        1 ≤ s.errors) ∧
      ((runJob "/" { leafOptions with bail := false }).perform [] FileTree.empty).value =
        .ok Summary.none := by
  intro failure
  have hended : ((runJob "/" { leafOptions with bail := true }).perform [] brokenTree).value =
      .error failure := rfl
  obtain ⟨-, -, hfailed, -⟩ := bail_cuts_run_short brokenTree [] "/" leafOptions
  have hscan : brokenTree.scan [] (Path.join "/" leafOptions.path) leafOptions.extension =
      .ok ["/in/a.xml", "/in/m.xml"] := rfl
  obtain ⟨s, hs⟩ :
      ∃ s, ((runJob "/" { leafOptions with bail := false }).perform [] brokenTree).value = .ok s :=
    exists_summary rfl hscan rfl
  obtain ⟨hok, -⟩ := bail_cuts_run_short FileTree.empty [] "/" leafOptions
  refine ⟨hended, ?_, (hok Summary.none rfl).1⟩
  rcases (hfailed failure hended).1 with ⟨f, hf⟩ | hsummary
  · exact absurd (hf.symm.trans hs) (by simp)
  · exact hsummary

end YangScript
