import YangScript.Command.Failure

/-!
# Jobs

A job is what a run asks of the file system and what it says, one request after another, each
with the job that follows on every answer. It can be performed on a file tree, which gives its
result, the tree that it leaves and all that it said, or carried out on a disk.
-/

set_option autoImplicit false

namespace YangScript

inductive Job (α : Type) where
  | done (a : α)
  | say (n : RunNotice) (next : Job α)
  | scan (directory extension : String) (next : Except ScanError (List String) → Job α)
  | read (file : String) (next : Except IoError String → Job α)
  | makeDirs (directory : String) (next : Except IoError Unit → Job α)
  | write (file text : String) (next : Except IoError Unit → Job α)

structure Performed (α : Type) where
  value : α
  tree : FileTree
  log : List RunNotice

namespace Job

variable {α β : Type}

def bind : Job α → (α → Job β) → Job β
  | done a, f => f a
  | say n next, f => say n (next.bind f)
  | scan directory extension next, f => scan directory extension (fun r => (next r).bind f)
  | read file next, f => read file (fun r => (next r).bind f)
  | makeDirs directory next, f => makeDirs directory (fun r => (next r).bind f)
  | write file text next, f => write file text (fun r => (next r).bind f)

def sayAll (ns : List RunNotice) (next : Job α) : Job α := ns.foldr say next

/-- Performs a job on a tree. Paths that are not absolute begin at `cwd`. -/
def perform (cwd : Location) : Job α → FileTree → Performed α
  | done a, t => ⟨a, t, []⟩
  | say n next, t =>
    let p := next.perform cwd t
    ⟨p.value, p.tree, n :: p.log⟩
  | scan directory extension next, t => (next (t.scan cwd directory extension)).perform cwd t
  | read file next, t => (next (t.read cwd file)).perform cwd t
  | makeDirs directory next, t =>
    let c := t.makeDirs cwd directory
    (next c.result).perform cwd c.tree
  | write file text next, t =>
    let c := t.write cwd file text
    (next c.result).perform cwd c.tree

theorem perform_bind (cwd : Location) (job : Job α) (f : α → Job β) (t : FileTree) :
    (job.bind f).perform cwd t =
      let first := job.perform cwd t
      let second := (f first.value).perform cwd first.tree
      ⟨second.value, second.tree, first.log ++ second.log⟩ := by
  induction job generalizing t with
  | done a => rfl
  | say n next ih => simp [bind, perform, ih]
  | scan directory extension next ih => simp [bind, perform, ih]
  | read file next ih => simp [bind, perform, ih]
  | makeDirs directory next ih => simp [bind, perform, ih]
  | write file text next ih => simp [bind, perform, ih]

theorem perform_sayAll (cwd : Location) (ns : List RunNotice) (next : Job α) (t : FileTree) :
    (sayAll ns next).perform cwd t =
      let p := next.perform cwd t
      ⟨p.value, p.tree, ns ++ p.log⟩ := by
  induction ns with
  | nil => rfl
  | cons n ns ih =>
    have hcons : sayAll (n :: ns) next = say n (sayAll ns next) := rfl
    simp [hcons, perform, ih]

end Job

end YangScript
