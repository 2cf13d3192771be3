import YangScript.Proofs.Effects

/-!
# Ending at the first failure

A stage that says its failures and goes on can be cut short: the first failure becomes its result,
and what would have followed is not done. The run that ends at its first failure is the other run
cut short, as a job and not only in what it comes to. So the two differ in nothing up to the first
failure, and one of them does nothing after it.
-/

set_option autoImplicit false

namespace YangScript

/-- The failure that a notice says. -/
def RunNotice.failure? : RunNotice → Option Failure
  | .failed f => some f
  | _ => none

theorem RunNotice.level_eq_error_iff (n : RunNotice) :
    n.level = .error ↔ ∃ f, n = .failed f := by
  cases n with
  | output n => cases n <;> simp [level, Notice.level]
  | _ => simp [level]

/-- The failures that are said, in order. -/
def failures (log : List RunNotice) : List Failure := log.filterMap RunNotice.failure?

theorem failures_append (log more : List RunNotice) :
    failures (log ++ more) = failures log ++ failures more :=
  List.filterMap_append

namespace Job

variable {σ τ : Type}

/-- The same stage, ended by the first failure that it says. -/
def cut : Stage σ → Stage σ
  | done r => done r
  | say n next =>
    match n.failure? with
    | some f => done (.error f)
    | none => say n next.cut
  | scan directory extension next => scan directory extension (fun r => (next r).cut)
  | read file next => read file (fun r => (next r).cut)
  | makeDirs directory next => makeDirs directory (fun r => (next r).cut)
  | write file text next => write file text (fun r => (next r).cut)

theorem cut_say {n : RunNotice} (h : n.failure? = none) (next : Stage σ) :
    cut (say n next) = say n next.cut := by
  rw [cut, h]

theorem cut_sayAll (ns : List RunNotice) (h : failures ns = []) (next : Stage σ) :
    cut (sayAll ns next) = sayAll ns next.cut := by
  induction ns with
  | nil => rfl
  | cons n ns ih =>
    have hn : n.failure? = none := by
      cases hn : n.failure? with
      | none => rfl
      | some f => simp [failures, hn] at h
    have hns : failures ns = [] := by
      rw [failures, List.filterMap_cons_none hn] at h
      exact h
    change cut (say n (sayAll ns next)) = say n (sayAll ns next.cut)
    rw [cut_say hn, ih hns]

theorem cut_andThen (stage : Stage σ) (next : σ → Stage τ) :
    (andThen stage next).cut = andThen stage.cut (fun s => (next s).cut) := by
  unfold andThen
  induction stage with
  | done r => cases r <;> rfl
  | say n rest ih =>
    rw [bind, cut, cut]
    cases n.failure? with
    | some f => rfl
    | none => exact congrArg (say n) ih
  | scan directory extension rest ih => exact congrArg (scan directory extension) (funext ih)
  | read file rest ih => exact congrArg (read file) (funext ih)
  | makeDirs directory rest ih => exact congrArg (makeDirs directory) (funext ih)
  | write file text rest ih => exact congrArg (write file text) (funext ih)

section

variable (base : Location) (stage : Stage σ) (t : FileTree)

/-- Without a failure nothing is cut off. -/
theorem perform_cut_of_no_failure (h : failures (stage.perform base t).log = []) :
    stage.cut.perform base t = stage.perform base t := by
  induction stage generalizing t with
  | done r => rfl
  | say n next ih =>
    cases hn : n.failure? with
    | some f => simp [perform, failures, hn] at h
    | none =>
      rw [perform, failures, List.filterMap_cons_none hn] at h
      simp only [cut, hn, perform, ih t h]
  | scan directory extension next ih => exact ih _ t h
  | read file next ih => exact ih _ t h
  | makeDirs directory next ih => exact ih _ _ h
  | write file text next ih => exact ih _ _ h

/-- The first failure that is said is the one that a stage cut short ends with. -/
theorem perform_cut_of_failure {f : Failure} {fs : List Failure}
    (h : failures (stage.perform base t).log = f :: fs) :
    (stage.cut.perform base t).value = .error f := by
  induction stage generalizing t with
  | done r => exact absurd h (by simp [perform, failures])
  | say n next ih =>
    cases hn : n.failure? with
    | some f' =>
      rw [perform, failures, List.filterMap_cons_some hn] at h
      simp only [cut, hn, perform, (List.cons.inj h).1]
    | none =>
      rw [perform, failures, List.filterMap_cons_none hn] at h
      simp only [cut, hn, perform, ih t h]
  | scan directory extension next ih => exact ih _ t h
  | read file next ih => exact ih _ t h
  | makeDirs directory next ih => exact ih _ _ h
  | write file text next ih => exact ih _ _ h

/-- A stage cut short does the first of what the stage does. -/
theorem effects_cut_prefix : stage.cut.effects base t <+: stage.effects base t := by
  induction stage generalizing t with
  | done r => exact List.prefix_refl _
  | say n next ih =>
    rw [cut]
    cases n.failure? with
    | some f => exact List.nil_prefix
    | none => exact ih t
  | scan directory extension next ih => exact ih _ t
  | read file next ih => exact ih _ t
  | makeDirs directory next ih => exact (List.prefix_cons_inj _).mpr (ih _ _)
  | write file text next ih => exact (List.prefix_append_right_inj _).mpr (ih _ _)

end

end Job

section

variable (options : Options) (out : String)

theorem loadAll_cut (files : List String) (s : Loaded) :
    (loadAll false files s).cut = loadAll true files s := by
  induction files generalizing s with
  | nil => rfl
  | cons file files ih =>
    rw [loadAll, loadAll, Job.cut_say rfl, Job.cut]
    congr 2
    funext reading
    cases Module.ofReading reading with
    | error e => rfl
    | ok m =>
      cases h : s.registry.accepts m with
      | true => simp only [h, if_true, ih]
      | false => simp [h, Job.cut_say (n := .superseded file m.name) rfl, ih]

theorem failures_output (ns : List Notice) : failures (ns.map .output) = [] := by
  induction ns with
  | nil => rfl
  | cons n ns ih => exact ih

theorem moduleJob_cut (m : Module) (s : Summary) (next : Summary → Stage Summary) :
    (moduleJob { options with bail := false } out m s next).cut =
      moduleJob { options with bail := true } out m s (fun s => (next s).cut) := by
  unfold moduleJob
  dsimp only
  rw [Job.cut_sayAll _ (failures_output _)]
  congr 1
  cases (m.prepare options.source).value with
  | failure f => rfl
  | noFields => rfl
  | ready file text =>
    simp only [Job.cut]
    congr 1
    funext answer
    cases answer with
    | error e => rfl
    | ok u => rfl

theorem writeAll_cut (ms : List Module) (s : Summary) :
    (writeAll { options with bail := false } out ms s).cut =
      writeAll { options with bail := true } out ms s := by
  induction ms generalizing s with
  | nil => rfl
  | cons m ms ih =>
    rw [writeAll, writeAll]
    cases m.isSubmodule with
    | true => simp [Job.cut_say (n := .skippedSubmodule m.name) rfl, ih]
    | false => simp [moduleJob_cut, ih]

theorem runFiles_cut (files : List String) :
    (runFiles { options with bail := false } out files).cut =
      runFiles { options with bail := true } out files := by
  rw [runFiles, runFiles, Job.cut_andThen, loadAll_cut]
  congr 1
  funext loaded
  simp only [Job.cut]
  congr 1
  funext answer
  cases answer with
  | error e => rfl
  | ok u =>
    simp only [Job.cut_andThen, writeAll_cut]
    rfl

/-- The run that ends at its first failure is the run that does not, cut short. -/
theorem runJob_cut (cwd : String) :
    (runJob cwd { options with bail := false }).cut = runJob cwd { options with bail := true } := by
  rw [runJob, runJob, Job.cut_say rfl, Job.cut]
  congr 2
  funext scanned
  rcases scanned with e | (_ | ⟨file, files⟩)
  · rfl
  · rfl
  · exact runFiles_cut options _ _

/-- Any run is the run that goes on after its failures, which is cut short if the options ask for
that. -/
theorem runJob_eq (cwd : String) :
    runJob cwd options =
      if options.bail then (runJob cwd { options with bail := false }).cut
      else runJob cwd { options with bail := false } := by
  cases hbail : options.bail with
  | true =>
    rw [if_pos rfl, runJob_cut, ← hbail]
  | false =>
    rw [if_neg (by decide), ← hbail]

end

end YangScript
