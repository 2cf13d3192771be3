import YangScript.Command.Run
import YangScript.Proofs.OutputDirectory

/-!
# What a job does to the disk

Of all that a job asks, only making directories and writing files can change a file tree. The
effects of a job on a tree are these requests, in order; a write that fails changes nothing and is
left out. The tree that a job leaves is made by its effects alone.
-/

set_option autoImplicit false

namespace YangScript

/-- A request that may change a tree. A directory may be made in part, or not at all. -/
inductive Effect where
  | directory (path : String)
  | file (path text : String)
  deriving DecidableEq, Repr

namespace Effect

/-- What an effect makes of a tree. -/
def apply (base : Location) (t : FileTree) : Effect → FileTree
  | directory path => (t.makeDirs base path).tree
  | file path text => (t.write base path text).tree

/-- The path and the text of a file that is written. -/
def written? : Effect → Option (String × String)
  | directory _ => none
  | file path text => some (path, text)

/-- Writing a file is an effect if it succeeds. -/
def ofWrite (path text : String) : Except IoError Unit → List Effect
  | .ok () => [file path text]
  | .error _ => []

/-- What some effects make of a tree, one after another. -/
def applyAll (base : Location) (es : List Effect) (t : FileTree) : FileTree :=
  es.foldl (apply base) t

/-- Every file among some effects can be written where its turn comes. -/
def Possible (base : Location) : List Effect → FileTree → Prop
  | [], _ => True
  | directory path :: es, t => Possible base es (apply base t (directory path))
  | file path text :: es, t =>
    (t.write base path text).result = .ok () ∧ Possible base es (apply base t (file path text))

end Effect

namespace Job

variable {α β : Type}

def effects (base : Location) : Job α → FileTree → List Effect
  | done _, _ => []
  | say _ next, t => next.effects base t
  | scan directory extension next, t => (next (t.scan base directory extension)).effects base t
  | read file next, t => (next (t.read base file)).effects base t
  | makeDirs directory next, t =>
    let c := t.makeDirs base directory
    .directory directory :: (next c.result).effects base c.tree
  | write file text next, t =>
    let c := t.write base file text
    Effect.ofWrite file text c.result ++ (next c.result).effects base c.tree

theorem effects_write_ok {base : Location} {t : FileTree} {file text : String}
    (h : (t.write base file text).result = .ok ()) (next : Except IoError Unit → Job α) :
    (write file text next).effects base t =
      .file file text :: (next (.ok ())).effects base (t.write base file text).tree := by
  simp [effects, h, Effect.ofWrite]

theorem effects_write_error {base : Location} {t : FileTree} {file text : String} {e : IoError}
    (h : (t.write base file text).result = .error e) (next : Except IoError Unit → Job α) :
    (write file text next).effects base t = (next (.error e)).effects base t := by
  simp [effects, h, Effect.ofWrite, FileTree.tree_of_write_error h]

/-- A job leaves the tree that its effects make. -/
theorem perform_tree (base : Location) (job : Job α) (t : FileTree) :
    (job.perform base t).tree = Effect.applyAll base (job.effects base t) t := by
  induction job generalizing t with
  | done a => rfl
  | say n next ih => exact ih t
  | scan directory extension next ih => exact ih _ t
  | read file next ih => exact ih _ t
  | makeDirs directory next ih => exact ih _ _
  | write file text next ih =>
    rw [perform]
    cases h : (t.write base file text).result with
    | ok u =>
      rw [effects_write_ok h]
      exact ih _ _
    | error e =>
      rw [effects_write_error h, ← ih, FileTree.tree_of_write_error h]

/-- The files among the effects of a job were written when their turn came. -/
theorem possible_effects (base : Location) (job : Job α) (t : FileTree) :
    Effect.Possible base (job.effects base t) t := by
  induction job generalizing t with
  | done a => trivial
  | say n next ih => exact ih t
  | scan directory extension next ih => exact ih _ t
  | read file next ih => exact ih _ t
  | makeDirs directory next ih => exact ih _ _
  | write file text next ih =>
    cases h : (t.write base file text).result with
    | ok u =>
      rw [effects_write_ok h]
      exact ⟨h, ih _ _⟩
    | error e =>
      rw [effects_write_error h]
      exact ih _ t

theorem effects_bind (base : Location) (job : Job α) (f : α → Job β) (t : FileTree) :
    (job.bind f).effects base t =
      job.effects base t ++
        (f (job.perform base t).value).effects base (job.perform base t).tree := by
  induction job generalizing t with
  | done a => rfl
  | say n next ih => exact ih t
  | scan directory extension next ih => exact ih _ t
  | read file next ih => exact ih _ t
  | makeDirs directory next ih =>
    simp only [bind, effects, perform, ih, List.cons_append]
  | write file text next ih =>
    simp only [bind, effects, perform, ih, List.append_assoc]

theorem effects_sayAll (base : Location) (ns : List RunNotice) (next : Job α) (t : FileTree) :
    (sayAll ns next).effects base t = next.effects base t := by
  induction ns with
  | nil => rfl
  | cons n ns ih => exact ih

end Job

end YangScript
